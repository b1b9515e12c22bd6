import Mathlib
import Patchbay.Proofs.Address
import Patchbay.Proofs.Reconnection

/-!
# Ids that are given out

The search for an id goes up from the last number until one is free, which is soon the case. No
number is used twice in the life of a graph, whatever is removed and loaded in between. An id can
be read back from the end: what follows its last dash is the number, whatever the stem looks like.
So no id is given out twice either.
-/

set_option autoImplicit false

namespace Patchbay

theorem dash_not_mem_digitText (n : Nat) : '-' ∉ (digitText n).toList := by
  rw [digitText, String.toList_ofList]
  intro hdash
  have hdigit := Nat.isDigit_of_mem_toDigits (by decide) (by decide) hdash
  exact absurd hdigit (by decide)

namespace PatchGraph

variable {g : PatchGraph} {stem : String}

/-- From the end up to the last dash an id shows its number. -/
theorem reverse_idAt (stem : String) (n : Nat) :
    (idAt stem n).toList.reverse.takeWhile (· ≠ '-') = (digitText n).toList.reverse := by
  have hsplit : (idAt stem n).toList.reverse =
      (digitText n).toList.reverse ++ '-' :: stem.toList.reverse := by
    rw [idAt, String.toList_append, String.toList_append, List.reverse_append, List.reverse_append]
    rfl
  rw [hsplit]
  refine takeWhile_append_of_head? (fun c hc => ?_) fun c hc => ?_
  · have hne : c ≠ '-' := fun heq => dash_not_mem_digitText n (heq ▸ List.mem_reverse.1 hc)
    simpa using hne
  · obtain rfl : '-' = c := Option.some.inj hc
    decide

/-- Ids of any two stems have different numbers. -/
theorem number_of_idAt {stem stem' : String} {n m : Nat} (h : idAt stem n = idAt stem' m) :
    n = m := by
  have hdigits : (digitText n).toList.reverse = (digitText m).toList.reverse := by
    rw [← reverse_idAt stem n, h, reverse_idAt]
  exact digitText_injective (String.toList_injective (List.reverse_injective hdigits))

/-! ## The search -/

/-- The search without a bound: from one number it gets to another one whose id is free, going up
one by one over ids that are taken. -/
inductive Search (g : PatchGraph) (stem : String) : Nat → Nat → Prop
  | found {n : Nat} (free : idAt stem (n + 1) ∉ g.ids) : Search g stem n (n + 1)
  | next {n m : Nat} (taken : idAt stem (n + 1) ∈ g.ids) (rest : Search g stem (n + 1) m) :
    Search g stem n m

theorem Search.lt {n m : Nat} (h : Search g stem n m) : n < m := by
  induction h with
  | found free => exact Nat.lt_succ_self _
  | next taken rest ih => exact Nat.lt_of_succ_lt ih

theorem Search.free {n m : Nat} (h : Search g stem n m) : idAt stem m ∉ g.ids := by
  induction h with
  | found free => exact free
  | next taken rest ih => exact ih

theorem freeNumber_le (g : PatchGraph) (stem : String) (fuel n : Nat) :
    g.freeNumber stem fuel n ≤ n + fuel + 1 := by
  induction fuel generalizing n with
  | zero => exact Nat.le_refl _
  | succ fuel ih =>
    rw [freeNumber]
    split
    · have := ih (n + 1)
      omega
    · omega

theorem search_freeNumber {fuel n : Nat} (h : idAt stem (g.freeNumber stem fuel n) ∉ g.ids) :
    Search g stem n (g.freeNumber stem fuel n) := by
  induction fuel generalizing n with
  | zero => exact .found h
  | succ fuel ih =>
    rw [freeNumber] at h ⊢
    split
    · next htaken =>
      rw [if_pos htaken] at h
      exact .next ((isTaken_iff g _).1 htaken) (ih h)
    · next hfree => exact .found fun hmem => hfree ((isTaken_iff g _).2 hmem)

theorem search_freshId (g : PatchGraph) (stem : String) :
    Search g stem g.lastId (g.freshId stem).2.lastId :=
  search_freeNumber (freeNumber_not_taken g stem g.lastId)

end PatchGraph

/-! ## Sessions -/

namespace EditCall

open PatchGraph

/-- The id an edit gave out. -/
def issued? : Except GraphError Reply → Option String
  | .ok (.id id) => some id
  | _ => none

/-- What a call says about the numbers: one has been found for the id that is answered, or none has
been used. -/
structure Counts (g : PatchGraph) (answer : Except GraphError Reply) (g' : PatchGraph) : Prop where
  grows : g.lastId ≤ g'.lastId
  fresh : ∀ id, issued? answer = some id →
    ∃ stem, id = idAt stem g'.lastId ∧ Search g stem g.lastId g'.lastId

theorem counts_silent {g : PatchGraph} {answer : Except GraphError Reply} {g' : PatchGraph}
    (hsame : g'.lastId = g.lastId) (hnone : issued? answer = none) : Counts g answer g' := by
  refine ⟨hsame.ge, fun id hid => ?_⟩
  rw [hnone] at hid
  cases hid

theorem counts_freshId {g g' : PatchGraph} {stem : String}
    (hcount : g'.lastId = (g.freshId stem).2.lastId) :
    Counts g (.ok (.id (g.freshId stem).1)) g' := by
  have hsearch := search_freshId g stem
  rw [← hcount] at hsearch
  refine ⟨hsearch.lt.le, ?_⟩
  rintro id ⟨⟩
  exact ⟨stem, by rw [hcount]; rfl, hsearch⟩

theorem edit_counts (g : PatchGraph) (call : EditCall) :
    Counts g ((call.edit g).map Prod.fst) (apply g call) := by
  rw [apply_eq]
  cases call with
  | addNode registry type position =>
    rw [edit, PatchGraph.addNode]
    cases registry.find? type with
    | none => exact counts_silent rfl rfl
    | some t => exact counts_freshId rfl
  | insertNode node =>
    rw [edit, PatchGraph.insertNode]
    cases g.node? node.id with
    | some n => exact counts_silent rfl rfl
    | none => exact counts_silent rfl rfl
  | removeNode id =>
    rw [edit, PatchGraph.removeNode]
    cases g.node? id with
    | none => exact counts_silent rfl rfl
    | some n => exact counts_silent rfl rfl
  | setParam id key value =>
    rw [edit, PatchGraph.setParam, PatchGraph.updateNode]
    cases g.node? id with
    | none => exact counts_silent rfl rfl
    | some n => exact counts_silent rfl rfl
  | setPosition id position =>
    rw [edit, PatchGraph.setPosition, PatchGraph.updateNode]
    cases g.node? id with
    | none => exact counts_silent rfl rfl
    | some n => exact counts_silent rfl rfl
  | connect c =>
    rw [edit, connect_eq]
    cases g.allow c fun _ => true with
    | error e => exact counts_silent rfl rfl
    | ok => exact counts_freshId rfl
  | reconnect edge c =>
    cases hedge : g.edge? edge with
    | none =>
      rw [edit, PatchGraph.reconnect, hedge]
      exact counts_silent rfl rfl
    | some old =>
      rw [edit, reconnect_eq hedge]
      cases g.allow c (·.id ≠ edge) with
      | error e => exact counts_silent rfl rfl
      | ok => exact counts_freshId rfl
  | disconnect id =>
    rw [edit, PatchGraph.disconnect]
    cases g.edge? id with
    | none => exact counts_silent rfl rfl
    | some e => exact counts_silent rfl rfl
  | load p => exact counts_silent rfl rfl

theorem inPlace_counts (g : PatchGraph) (call : EditCall) :
    Counts g (call.inPlace.on g).1 (call.inPlace.on g).2 := by
  rw [on_inPlace]
  exact edit_counts g call

/-- All ids that are given out in a session, first to last. -/
def issued (g : PatchGraph) (calls : List EditCall) : List String :=
  (session g calls).1.filterMap issued?

theorem issued_cons (g : PatchGraph) (call : EditCall) (calls : List EditCall) :
    issued g (call :: calls) =
      (issued? (call.inPlace.on g).1).toList ++ issued (call.inPlace.on g).2 calls := by
  rw [issued, session_cons, List.filterMap_cons]
  cases issued? (call.inPlace.on g).1 <;> rfl

theorem number_of_issued (calls : List EditCall) {g : PatchGraph} {id : String}
    (h : id ∈ issued g calls) : ∃ stem n, id = idAt stem n ∧ g.lastId < n := by
  induction calls generalizing g with
  | nil => cases h
  | cons call calls ih =>
    have hcounts := inPlace_counts g call
    rw [issued_cons, List.mem_append, Option.mem_toList] at h
    rcases h with h | h
    · obtain ⟨stem, hid, hsearch⟩ := hcounts.fresh id h
      exact ⟨stem, _, hid, hsearch.lt⟩
    · obtain ⟨stem, n, hid, hlt⟩ := ih h
      exact ⟨stem, n, hid, Nat.lt_of_le_of_lt hcounts.grows hlt⟩

theorem issued_nodup (g : PatchGraph) (calls : List EditCall) : (issued g calls).Nodup := by
  induction calls generalizing g with
  | nil => exact .nil
  | cons call calls ih =>
    rw [issued_cons]
    cases hnow : issued? (call.inPlace.on g).1 with
    | none => exact ih _
    | some id =>
      -- whatever comes later has a greater number
      obtain ⟨stem, hid, -⟩ := (inPlace_counts g call).fresh id hnow
      refine List.nodup_cons.2 ⟨fun hlater => ?_, ih _⟩
      obtain ⟨stem', n, hid', hlt⟩ := number_of_issued calls hlater
      rw [hid] at hid'
      exact hlt.ne (number_of_idAt hid')

end EditCall

open EditCall PatchGraph in
/-- On any document the search for an id comes to an end: it goes up by no more than one for every
node and every edge and one more, and takes the first number whose id no node or edge has. Every id
that an edit answers was found by such a search. And among all the ids that are given out while a
graph is edited, through all that is removed, loaded and refused and for whatever node types, none
comes twice. -/
theorem issued_distinct (g : PatchGraph) :
    (∀ stem, ∃ n, (InPlace.freshId stem).on g = (.ok (idAt stem n), { g with lastId := n }) ∧
      Search g stem g.lastId n ∧ n ≤ g.lastId + (g.nodes.length + g.edges.length + 1) ∧
      idAt stem n ∉ g.ids) ∧
    (∀ (call : EditCall) id, issued? (call.inPlace.on g).1 = some id → id ∉ g.ids ∧
      ∃ stem, Search g stem g.lastId (call.inPlace.on g).2.lastId ∧
        id = idAt stem (call.inPlace.on g).2.lastId) ∧
    ∀ calls, (issued g calls).Nodup := by
  refine ⟨fun stem => ?_, fun call id hid => ?_, issued_nodup g⟩
  · have hsearch := search_freshId g stem
    exact ⟨_, InPlace.on_search .., hsearch, freeNumber_le .., hsearch.free⟩
  · obtain ⟨stem, rfl, hsearch⟩ := (inPlace_counts g call).fresh id hid
    exact ⟨hsearch.free, stem, hsearch, rfl⟩

/-- A document in which the first ids for an edge are those of a node and of an edge. -/
def crowded : PatchGraph :=
  ⟨⟨[.new "edge-1" "number", .new "out" "output"],
    [⟨"edge-2", "edge-1", "signal", "out", "left"⟩]⟩, 0⟩

def crowdedCall : EditCall := .connect ⟨"edge-1", "signal", "out", "right"⟩

/-- The third number is the first one that is free; it is not given out again after the edge has
gone. -/
theorem issued_distinct_crowded :
    EditCall.issued? (crowdedCall.inPlace.on crowded).1 = some "edge-3" ∧
      "edge-3" ∉ crowded.ids ∧
      (∃ stem, PatchGraph.Search crowded stem 0 3 ∧ "edge-3" = PatchGraph.idAt stem 3) ∧
      EditCall.issued crowded [crowdedCall, .disconnect "edge-3", crowdedCall, .load .empty,
        crowdedCall, .load crowded.patch, crowdedCall] = ["edge-3", "edge-4", "edge-5"] ∧
      ["edge-3", "edge-4", "edge-5"].Nodup := by
  obtain ⟨-, hcall, hnodup⟩ := issued_distinct crowded
  have hid : EditCall.issued? (crowdedCall.inPlace.on crowded).1 = some "edge-3" := by decide
  have hissued : EditCall.issued crowded [crowdedCall, .disconnect "edge-3", crowdedCall,
      .load .empty, crowdedCall, .load crowded.patch, crowdedCall] =
      ["edge-3", "edge-4", "edge-5"] := by decide
  obtain ⟨hnot, hsearch⟩ := hcall crowdedCall "edge-3" hid
  exact ⟨hid, hnot, hsearch, hissued, hissued ▸ hnodup _⟩

end Patchbay
