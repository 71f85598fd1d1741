import EcmaPress.Proofs.Captures
import EcmaPress.Proofs.Segments
import EcmaPress.Proofs.Tallies

/-!
# Occurrences and their places

The names that occur in a program stand at places of their own, as each of them is a token of the
source. So new names, which are kept by the places of occurrences, do not get in each other's way,
and each occurrence is given the name that its binding is called.
-/

namespace EcmaPress

/-! ### Places -/

/-- The names among the pieces of tokens stand one behind the other. -/
theorem Aligned.ids_ordered {ts : List Token} {ps : List Piece} (h : Aligned ts ps)
    (hread : ∀ t ∈ ts, t.Readable) {source : List Char} {start : Nat}
    (htiling : Tiling source start ts) : (∀ id ∈ Piece.ids ps, start ≤ id.pos.offset) ∧
      (Piece.ids ps).Pairwise fun a b => a.pos.offset < b.pos.offset := by
  induction h generalizing start with
  | nil => exact ⟨nofun, .nil⟩
  | @written t ts p ps hfits hstands _ _ ih =>
    obtain ⟨ht, hread'⟩ := List.forall_mem_cons.mp hread
    cases htiling with
    | token htiles hrest =>
    obtain ⟨hlater, hordered⟩ := ih hread' hrest
    have hstart := htiles.ordered
    have hlen := ht.length_pos
    cases p with
    | name id =>
      have hpos : t.pos = id.pos := hstands
      rw [hpos] at hlater hstart
      refine ⟨List.forall_mem_cons.mpr ⟨hstart, fun other hother => ?_⟩,
        .cons (fun other hother => ?_) hordered⟩
      · exact Nat.le_trans (Nat.le_add_right_of_le hstart) (hlater other hother)
      · exact Nat.lt_of_lt_of_le (Nat.lt_add_of_pos_right hlen) (hlater other hother)
    | _ => exact ⟨fun other hother => Nat.le_trans (Nat.le_add_right_of_le hstart)
        (hlater other hother), hordered⟩
  | @layout _ p _ hp _ ih =>
    cases p with
    | name id => simp [Piece.isLayout] at hp
    | _ => exact ih hread htiling
  | inserted _ ih => exact ih hread htiling
  | trailing _ _ _ ih =>
    cases htiling with
    | token htiles hrest =>
    obtain ⟨hlater, hordered⟩ := ih (List.forall_mem_cons.mp hread).2 hrest
    refine ⟨fun id hid => ?_, hordered⟩
    exact Nat.le_trans (Nat.le_add_right_of_le htiles.ordered) (hlater id hid)

namespace Scoping

variable {s : Scoping} {reserved : List String}

/-- Every occurrence has a place of its own. -/
def Distinct (s : Scoping) : Prop :=
  (s.occurrences.toList.map fun o => o.id.pos.offset).Nodup

/-- The names that occur in a walk are those of its events. -/
theorem map_id_occurrences (events : List BindingEvent) :
    (ofEvents events).occurrences.toList.map Occurrence.id = BindingEvent.ids events := by
  have hrun : ∀ (events : List BindingEvent) (s : Scoping),
      (events.foldl step s).occurrences.toList.map Occurrence.id =
        s.occurrences.toList.map Occurrence.id ++ BindingEvent.ids events := by
    intro events
    induction events with
    | nil => intro s; simp
    | cons e events ih =>
      intro s
      rw [List.foldl_cons, ih]
      cases e <;> simp [step, occur]
  simpa [ofEvents] using hrun events {}

/-! ### New names by place -/

/-- New names with that of one more occurrence. -/
def giveName (s : Scoping) (reserved : List String) (renames : Renames) (o : Occurrence) : Renames :=
  if s.called reserved o == o.id.name then renames
  else renames.insert o.id.pos.offset (s.called reserved o)

theorem renames_eq (s : Scoping) (reserved : List String) :
    s.renames reserved = s.occurrences.toList.foldl (s.giveName reserved) ∅ := by
  rw [renames, resolved, List.foldl_map]
  rfl

theorem getElem?_giveName_ne (renames : Renames) {o : Occurrence} {offset : Nat}
    (h : o.id.pos.offset ≠ offset) : (s.giveName reserved renames o)[offset]? = renames[offset]? := by
  unfold giveName
  split
  · rfl
  · rw [Std.TreeMap.getElem?_insert, if_neg (by simpa using h)]

theorem getElem?_giveNames_ne {os : List Occurrence} {offset : Nat}
    (h : ∀ o ∈ os, o.id.pos.offset ≠ offset) (renames : Renames) :
    (os.foldl (s.giveName reserved) renames)[offset]? = renames[offset]? := by
  induction os generalizing renames with
  | nil => rfl
  | cons o os ih =>
    obtain ⟨hfirst, hrest⟩ := List.forall_mem_cons.mp h
    rw [List.foldl_cons, ih hrest, getElem?_giveName_ne _ hfirst]

/-- An occurrence is given a name if it is called by another one than its own. -/
theorem renames_getElem? (hdistinct : s.Distinct) {o : Occurrence} (ho : o ∈ s.occurrences) :
    (s.renames reserved)[o.id.pos.offset]? =
      if s.called reserved o == o.id.name then none else some (s.called reserved o) := by
  obtain ⟨front, back, hsplit⟩ := List.append_of_mem (Array.mem_toList_iff.mpr ho)
  rw [Distinct, hsplit, List.map_append, List.map_cons] at hdistinct
  obtain ⟨-, hback, hcross⟩ := List.nodup_append.mp hdistinct
  have hafter : ∀ other ∈ back, other.id.pos.offset ≠ o.id.pos.offset := fun other hother heq =>
    (List.nodup_cons.mp hback).1 (heq ▸ List.mem_map_of_mem hother)
  have hbefore : ∀ other ∈ front, other.id.pos.offset ≠ o.id.pos.offset := fun other hother =>
    hcross _ (List.mem_map_of_mem hother) _ (List.mem_cons_self ..)
  rw [renames_eq, hsplit, List.foldl_append, List.foldl_cons, getElem?_giveNames_ne hafter, giveName]
  split
  · rw [getElem?_giveNames_ne hbefore, Std.TreeMap.getElem?_emptyc]
  · rw [Std.TreeMap.getElem?_insert_self]

/-- An occurrence is given the name that it is called. -/
theorem getElem?_renames (hdistinct : s.Distinct) {o : Occurrence} (ho : o ∈ s.occurrences) :
    (s.renames reserved)[o.id.pos.offset]?.getD o.id.name = s.called reserved o := by
  rw [renames_getElem? hdistinct ho]
  split
  · next heq => exact (beq_iff_eq.mp heq).symm
  · rfl

end Scoping

/-- The names that occur in a parsed program have places of their own. -/
theorem Program.distinct {source : String} {name : Option String} {program : Program}
    (h : parse source name = .ok program) : program.scoping.Distinct := by
  obtain ⟨c, c', hnext, hprogram⟩ := parse_eq_ok.mp h
  obtain ⟨ts, hreads, haligned⟩ := (ProgramEcho.program hprogram).traces
  have hordered := (haligned.ids_ordered hreads.readable
    ((hreads.lexes hnext).tiling_behind (.start _)).1).2
  have htally : Tally program.events program.pieces :=
    Program.tally _ _ _ hprogram
  have hnodup : ((BindingEvent.ids program.events).map fun id => id.pos.offset).Nodup :=
    (htally.map _).nodup_iff.mpr (List.pairwise_map.mpr (hordered.imp Nat.ne_of_lt))
  rw [← Scoping.map_id_occurrences, List.map_map] at hnodup
  exact hnodup

end EcmaPress
