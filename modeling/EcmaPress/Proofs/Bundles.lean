import Mathlib.Data.List.Forall2
import EcmaPress.Mapping.Bundle
import EcmaPress.Proofs.Mappings
import EcmaPress.Proofs.Merging
import EcmaPress.Proofs.Segments

/-!
# What a bundle tells of its programs

However many programs are pushed, the text of a bundle is made of theirs, its sources are the names
that they came by, and each of its segments tells where in the whole text a token of its program
begins. What one push keeps up is that the place of a bundle is the end of its text and that its
segments stand at ever later offsets of the text. Places tell offsets apart as long as 32 bits can
count the lines and columns of the whole text.
-/

namespace EcmaPress

open EcmaPress.Bundle (shift)

/-! ### Places behind other text -/

namespace Spot

/-- A spot of a text that begins at `p`, as a spot of the whole. -/
def shift (p q : Spot) : Spot :=
  if q.line = 0 then ⟨p.line, p.column + q.column⟩ else ⟨p.line + q.line, q.column⟩

theorem line_shift (p q : Spot) : (shift p q).line = p.line + q.line := by
  unfold shift
  split
  · next hzero => rw [hzero]; rfl
  · rfl

theorem shift_nextLine (p q : Spot) :
    (⟨(shift p q).line + 1, 0⟩ : Spot) = shift p ⟨q.line + 1, 0⟩ := by
  rw [line_shift]
  rfl

theorem shift_nextColumn (p q : Spot) :
    (⟨(shift p q).line, (shift p q).column + 1⟩ : Spot) = shift p ⟨q.line, q.column + 1⟩ := by
  unfold shift
  split <;> rfl

/-- Where a text leads to depends on where it begins by a shift only. -/
theorem after_shift (p q : Spot) (text : List Char) :
    (shift p q).after text = shift p (q.after text) := by
  fun_induction after q text with
  | case1 => rfl
  | case2 q rest ih => rw [after, shift_nextLine, ih]
  | case3 q c rest hcrlf hc ih => rw [after, if_pos hc, shift_nextLine, ih]; exact hcrlf
  | case4 q c rest hcrlf hc ih => rw [after, if_neg hc, shift_nextColumn, ih]; exact hcrlf

theorem after_eq_shift (p : Spot) (text : List Char) : p.after text = shift p (after {} text) :=
  after_shift p {} text

/-- Places are shifted as spots are, as long as the lines of the text behind can be counted. -/
theorem place_shift (p : Spot) {q : Spot} (h : q.line < UInt32.size) :
    (shift p q).place = Bundle.shift p.place q.place := by
  have hzero : UInt32.ofNat q.line = 0 ↔ q.line = 0 := by
    rw [← UInt32.toNat_inj, UInt32.toNat_ofNat_of_lt' h]
    rfl
  unfold shift Bundle.shift place
  dsimp only
  by_cases hline : q.line = 0
  · rw [if_pos hline, if_pos (hzero.mpr hline), UInt32.ofNat_add]
  · rw [if_neg hline, if_neg (hline ∘ hzero.mp), UInt32.ofNat_add]

end Spot

/-- In a text that is covered, the place behind two parts is that of the second part, shifted by
that of the first one. -/
theorem Place.Covers.after_append {front back : List Char} (h : Covers (front ++ back))
    (hseam : Seamless front back) : Place.after {} (front ++ back) =
      Bundle.shift (Place.after {} front) (Place.after {} back) := by
  have hspot := h _ List.prefix_rfl
  rw [Spot.after_append _ hseam, Spot.after_eq_shift] at hspot
  have hline := hspot.1
  rw [Spot.line_shift] at hline
  rw [start_after, start_after, start_after, Spot.after_append _ hseam, Spot.after_eq_shift]
  exact Spot.place_shift _ (by omega)

/-- A place where a text may be cut remains one if more text stands around. -/
theorem Seamless.within {front text : List Char} {i : Nat}
    (h : Seamless (text.take i) (text.drop i)) (hi : i < text.length)
    (hfront : front.getLast? ≠ some '\r') (back : List Char) :
    Seamless (front ++ text.take i) (text.drop i ++ back) := by
  intro hlast
  obtain ⟨c, more, hcons⟩ : ∃ c more, text.drop i = c :: more :=
    List.exists_cons_of_ne_nil (List.drop_eq_nil_iff.not.mpr (Nat.not_le.mpr hi))
  rw [hcons] at h ⊢
  rw [List.getLast?_append] at hlast
  cases htake : (text.take i).getLast? with
  | none =>
    rw [htake] at hlast
    exact absurd hlast hfront
  | some d =>
    rw [htake] at hlast
    exact h (htake.trans hlast)

theorem take_within (front : List Char) {text : List Char} {i : Nat} (hi : i < text.length)
    (back : List Char) :
    (front ++ (text ++ back)).take (front.length + i) = front ++ text.take i ∧
      (front ++ (text ++ back)).drop (front.length + i) = text.drop i ++ back := by
  rw [List.take_length_add_append, List.take_append_of_le_length (Nat.le_of_lt hi),
    ← List.drop_drop, List.drop_left, List.drop_append_of_le_length (Nat.le_of_lt hi)]
  exact ⟨rfl, rfl⟩

/-- Behind other text, which does not end in the middle of a line end, and with more text behind it,
a printed program has its tokens at places that are shifted by the other text. -/
theorem Segment.Ties.shift {source printed front back : List Char} {renames : Renames} {s : Segment}
    {t : Token} {i : Nat} (h : s.Ties source printed renames t i)
    (hfront : front.getLast? ≠ some '\r')
    (hcovers : Place.Covers (front ++ (printed ++ back))) :
    Segment.Ties source (front ++ (printed ++ back)) renames
      { s with generated := Bundle.shift (Place.after {} front) s.generated } t
      (front.length + i) := by
  obtain ⟨htake, hdrop⟩ := take_within front h.lt_length back
  have hwhole {text : List Char} (htext : text <+: printed.drop i) :
      text <+: (front ++ (printed ++ back)).drop (front.length + i) :=
    hdrop ▸ htext.trans (List.prefix_append ..)
  refine { h with
    generated := ?_
    seam := htake ▸ hdrop ▸ h.seam.within h.lt_length hfront back
    same := fun hname => hwhole (h.same hname)
    renamed := fun old hname => ?_ }
  · have hpart : Place.Covers (front ++ printed.take i) := by
      rw [← htake]
      exact fun _ hstart => hcovers _ (hstart.trans (List.take_prefix ..))
    rw [htake, hpart.after_append (.of_not_return hfront _), h.generated]
  · obtain ⟨hold, new, hnew, hne, htext⟩ := h.renamed old hname
    exact ⟨hold, new, hnew, hne, hwhole htext⟩

/-- Segments are tied to ever later offsets. -/
theorem Tied.offsets {source printed : List Char} {renames : Renames} {ts : List Token}
    {start i : Nat} {segments : List Segment}
    (h : Tied source printed renames ts start i segments) :
    ∃ ties : List (Segment × Nat), ties.map Prod.fst = segments ∧
      (∀ p ∈ ties, i ≤ p.2 ∧ ∃ t, p.1.Ties source printed renames t p.2) ∧
      ties.Pairwise fun p q => p.2 < q.2 := by
  induction h with
  | done => exact ⟨[], rfl, nofun, .nil⟩
  | @cons start i j t s segments ht hstart hj hties hseam _ ih =>
    obtain ⟨ties, rfl, hall, hordered⟩ := ih
    refine ⟨(s, j) :: ties, rfl, List.forall_mem_cons.mpr ⟨⟨hj, t, hties⟩, fun p hp => ?_⟩,
      .cons (fun p hp => (hall p hp).1) hordered⟩
    exact ⟨Nat.le_trans hj (Nat.le_of_succ_le (hall p hp).1), (hall p hp).2⟩

/-! ### Pushed programs -/

/-- A program that is pushed: the name of its source, the text that it was parsed from, and the
rules that it is printed by, which indent by spaces if at all. -/
structure Push where
  source : String
  input : String
  program : Program
  rules : List Rule
  parsed : ∃ name, parse input name = .ok program
  indent : ∀ indent, .indent indent ∈ rules → ∀ c ∈ indent.toList, c = ' '

namespace Push

/-- What is pushed. -/
def printed (push : Push) : Printed :=
  push.program.print push.rules

/-- The names that are printed in the place of others. -/
def renames (push : Push) : Renames :=
  push.program.renames (.ofRules push.rules)

/-- Some text is pushed. -/
def isWritten (push : Push) : Bool :=
  !push.printed.text.isEmpty

/-- What comes in front of a text, if the last semicolon before it was dropped or not. -/
def lead (openEnd : Bool) : List Char :=
  if openEnd then [';'] else []

/-- The texts of programs in their order, with a semicolon where one was dropped. -/
def texts (openEnd : Bool) : List Push → List Char
  | [] => []
  | push :: rest =>
    lead openEnd ++ (push.printed.text.toList ++ texts push.printed.openEnd rest)

/-- An entry of a bundle stands for a segment of a program whose text begins at an offset of the
whole text. It names the source of the program and says the same of it, and the token that the
segment ties to an offset of the printed program is tied to the place of this offset in the whole
text, if places cover that. -/
structure Carries (push : Push) (bundle : Bundle) (start : Nat) (s : Segment) (e : Entry) :
    Prop where
  source : bundle.sources[e.source]? = some push.source
  origin : e.segment.origin = s.origin
  name : e.segment.name = s.name
  ties : ∃ ts, tokensOf push.input = .ok ts ∧ ∃ t ∈ ts, ∃ i,
    s.Ties push.input.toList push.printed.text.toList push.renames t i ∧
      (Place.Covers bundle.text.toList →
        e.segment.Ties push.input.toList bundle.text.toList push.renames t (start + i))

/-- The entries of a bundle that stand for the segments of programs whose texts follow each other
from an offset on. -/
inductive Enters (bundle : Bundle) : Nat → Bool → List Push → List Entry → Prop
  | done {start : Nat} {openEnd : Bool} : Enters bundle start openEnd [] []
  | push {start : Nat} {openEnd : Bool} {push : Push} {pushes : List Push} {es rest : List Entry} :
      List.Forall₂ (push.Carries bundle (start + (lead openEnd).length)) push.printed.segments es →
      Enters bundle (start + (lead openEnd).length + push.printed.text.length)
        push.printed.openEnd pushes rest →
      Enters bundle start openEnd (push :: pushes) (es ++ rest)

theorem last (push : Push) : push.printed.text.toList.getLast? ≠ some '\r' := by
  obtain ⟨name, hparse⟩ := push.parsed
  exact (Program.print_marked hparse push.indent).1

theorem tied (push : Push) : ∃ ts, tokensOf push.input = .ok ts ∧
    Tied push.input.toList push.printed.text.toList push.renames ts 0 0 push.printed.segments := by
  obtain ⟨name, hparse⟩ := push.parsed
  exact Program.print_tied hparse push.indent

/-- A program that leaves no text leaves no segments either. -/
theorem segments_eq_nil {push : Push} (h : ¬ push.isWritten) : push.printed.segments = [] := by
  have hempty : push.printed.text = "" := by simpa [isWritten] using h
  obtain ⟨_, -, htied⟩ := push.tied
  refine List.eq_nil_iff_forall_not_mem.mpr fun s hs => ?_
  obtain ⟨t, -, i, hties, -⟩ := htied.ties s hs
  have hlt := hties.lt_length
  rw [hempty] at hlt
  exact Nat.not_lt_zero _ hlt

end Push

/-! ### One push -/

namespace Bundle

variable {bundle : Bundle} {push : Push}

/-- Sources with another one, unless they have it. -/
def withSource (sources : List String) (source : String) : List String :=
  if sources.contains source then sources else sources ++ [source]

theorem prefix_withSource (sources : List String) (source : String) :
    sources <+: withSource sources source := by
  unfold withSource
  split
  · exact List.prefix_rfl
  · exact List.prefix_append ..

theorem mem_withSource (sources : List String) (source : String) :
    source ∈ withSource sources source := by
  unfold withSource
  split
  · next hmem => exact List.contains_iff_mem.mp hmem
  · simp

theorem withSource_eraseDups (names : List String) (source : String) :
    withSource names.eraseDups source = (names ++ [source]).eraseDups := by
  unfold withSource
  rw [List.eraseDups_append]
  by_cases hmem : source ∈ names <;>
    simp [List.removeAll, List.mem_eraseDups, List.eraseDups_cons, hmem]

/-- The entries of a bundle number its sources. -/
def Numbered (bundle : Bundle) : Prop :=
  ∀ e ∈ bundle.entries.toList, e.source < bundle.sources.length

theorem numbered_empty : ({} : Bundle).Numbered :=
  nofun

/-- Whatever is pushed, entries go on to number the sources. -/
theorem numbered_push (h : bundle.Numbered) (source : String) (printed : Printed) :
    (bundle.push source printed).Numbered := by
  unfold Bundle.push
  split
  · exact h
  · -- The semicolon in front, if there is one, leaves sources and entries alone.
    generalize hparted : (if bundle.openEnd then bundle.append ";" else bundle) = parted
    have hsources : parted.sources = bundle.sources := by rw [← hparted]; split <;> rfl
    have hentries : parted.entries = bundle.entries := by rw [← hparted]; split <;> rfl
    have hmem := mem_withSource parted.sources source
    have hlength := (prefix_withSource parted.sources source).length_le
    intro e he
    change e.source < (withSource parted.sources source).length
    simp only [Array.toList_appendList, List.mem_append, List.mem_map, hentries] at he
    rcases he with he | ⟨s, -, rfl⟩
    · exact Nat.lt_of_lt_of_le (hsources ▸ h e he) hlength
    · exact List.idxOf_lt_length_of_mem hmem

theorem Numbered.sourceMap (h : bundle.Numbered) (hsources : bundle.sources.length ≤ 2 ^ 62)
    (hnames : (Entry.names (Entry.merge bundle.entries.toList)).length ≤ 2 ^ 62) (file : String) :
    ∃ names mappings, Entry.encode? (Entry.merge bundle.entries.toList) = some (names, mappings) ∧
      bundle.sourceMap file = ⟨file, bundle.sources, names, mappings⟩ := by
  obtain ⟨mappings, hencode⟩ := Entry.exists_encode? (fun e he =>
    Nat.lt_of_lt_of_le (h e (Entry.subset_merge _ he)) hsources) hnames
  exact ⟨_, mappings, hencode, by rw [Bundle.sourceMap, hencode]; rfl⟩

/-- A bundle with the semicolon that its last program lacks. -/
def parted (bundle : Bundle) : Bundle :=
  if bundle.openEnd then bundle.append ";" else bundle

/-- The entry that a segment becomes behind a text. -/
def entry (bundle : Bundle) (push : Push) (s : Segment) : Entry where
  source := (withSource bundle.sources push.source).idxOf push.source
  segment := { s with generated := shift bundle.place s.generated }

/-- Writes a program behind a bundle. -/
def write (bundle : Bundle) (push : Push) : Bundle :=
  { bundle.append push.printed.text with
    openEnd := push.printed.openEnd
    sources := withSource bundle.sources push.source
    entries := bundle.entries ++ push.printed.segments.map (bundle.entry push) }

/-- Adds a program. -/
def add (bundle : Bundle) (push : Push) : Bundle :=
  bundle.push push.source push.printed

theorem add_of_isWritten (h : push.isWritten) : bundle.add push = bundle.parted.write push := by
  have hsome : push.printed.text.isEmpty = false := by simpa [Push.isWritten] using h
  simp only [add, Bundle.push, hsome, Bool.false_eq_true, if_false]
  rfl

theorem add_of_not_isWritten (h : ¬ push.isWritten) : bundle.add push = bundle := by
  have hempty : push.printed.text.isEmpty = true := by simpa [Push.isWritten] using h
  simp only [add, Bundle.push, hempty, if_true]

theorem text_parted :
    bundle.parted.text.toList = bundle.text.toList ++ Push.lead bundle.openEnd := by
  unfold parted Push.lead
  split <;> simp [append]

theorem sources_parted : bundle.parted.sources = bundle.sources := by
  unfold parted
  split <;> rfl

theorem entries_parted : bundle.parted.entries = bundle.entries := by
  unfold parted
  split <;> rfl

theorem text_write : (bundle.write push).text.toList =
    bundle.text.toList ++ push.printed.text.toList :=
  String.toList_append

theorem sources_write :
    (bundle.parted.write push).sources = withSource bundle.sources push.source :=
  congrArg (withSource · push.source) sources_parted

theorem entries_write : (bundle.write push).entries.toList =
    bundle.entries.toList ++ push.printed.segments.map (bundle.entry push) := by
  simp [write]

/-- An entry stands at an offset of a text, between two characters that make no line end. -/
structure Stands (text : List Char) (e : Entry) (i : Nat) : Prop where
  lt_length : i < text.length
  generated : Place.after {} (text.take i) = e.segment.generated
  seam : Seamless (text.take i) (text.drop i)

theorem Stands.append {text : List Char} {e : Entry} {i : Nat} (h : Stands text e i)
    (more : List Char) : Stands (text ++ more) e i := by
  obtain ⟨htake, hdrop⟩ := take_within [] h.lt_length more
  simp only [List.nil_append, List.length_nil, Nat.zero_add] at htake hdrop
  refine ⟨?_, by rw [htake, h.generated], ?_⟩
  · rw [List.length_append]
    exact Nat.lt_add_right _ h.lt_length
  · rw [htake, hdrop]
    exact h.seam.within h.lt_length (show ([] : List Char).getLast? ≠ some '\r' by decide) more

/-- What stands at a later offset has a later place, if places cover the text. -/
theorem Stands.before {text : List Char} {d e : Entry} {i j : Nat} (hd : Stands text d i)
    (he : Stands text e j) (hij : i < j) (hcovers : Place.Covers text) :
    d.segment.generated.Before e.segment.generated := by
  rw [← hd.generated, ← he.generated]
  exact hcovers.before_of_take hij (Nat.le_of_lt he.lt_length) hd.seam

/-- What pushes keep up: the place of a bundle is the end of its text, which does not end in the
middle of a line end, and segments stand at ever later offsets, if places cover the text. -/
structure Settled (bundle : Bundle) : Prop where
  place : bundle.place = Place.after {} bundle.text.toList
  last : bundle.text.toList.getLast? ≠ some '\r'
  offsets : Place.Covers bundle.text.toList → ∃ stands : List (Entry × Nat),
    stands.map Prod.fst = bundle.entries.toList ∧
      (∀ p ∈ stands, Stands bundle.text.toList p.1 p.2) ∧ stands.Pairwise fun p q => p.2 < q.2

theorem settled_empty : ({} : Bundle).Settled :=
  ⟨rfl, by simp, fun _ => ⟨[], rfl, nofun, .nil⟩⟩

theorem Settled.append (h : bundle.Settled) {text : String}
    (hlast : text.toList.getLast? ≠ some '\r') : (bundle.append text).Settled := by
  have htext : (bundle.append text).text.toList = bundle.text.toList ++ text.toList :=
    String.toList_append
  constructor
  · rw [htext, Place.after_append _ (.of_not_return h.last _), ← h.place]
    rfl
  · rw [htext, List.getLast?_append]
    cases hsome : text.toList.getLast? with
    | none => exact h.last
    | some c => rwa [hsome] at hlast
  · intro hcovers
    rw [htext] at hcovers ⊢
    obtain ⟨stands, hentries, hstands, hordered⟩ := h.offsets hcovers.append
    exact ⟨stands, hentries, fun p hp => (hstands p hp).append _, hordered⟩

theorem Settled.parted (h : bundle.Settled) : bundle.parted.Settled := by
  unfold Bundle.parted
  split
  · exact h.append (by decide)
  · exact h

theorem Settled.write (h : bundle.Settled) (push : Push) : (bundle.write push).Settled := by
  have happend := h.append push.last
  refine ⟨happend.place, happend.last, fun hcovers => ?_⟩
  rw [text_write] at hcovers ⊢
  rw [entries_write]
  obtain ⟨stands, hentries, hstands, hordered⟩ := h.offsets hcovers.append
  obtain ⟨_, -, htied⟩ := push.tied
  obtain ⟨ties, hsegments, hties, hordered'⟩ := htied.offsets
  refine ⟨stands ++ ties.map fun p => (bundle.entry push p.1, bundle.text.toList.length + p.2),
    ?_, fun p hp => ?_, ?_⟩
  · rw [List.map_append, hentries, ← hsegments, List.map_map, List.map_map]
    rfl
  · rcases List.mem_append.mp hp with hp | hp
    · exact (hstands p hp).append _
    · obtain ⟨⟨s, i⟩, hs, rfl⟩ := List.mem_map.mp hp
      obtain ⟨-, t, ht⟩ := hties _ hs
      rw [← List.append_nil push.printed.text.toList] at hcovers
      have hshift := ht.shift h.last hcovers
      rw [List.append_nil, ← h.place] at hshift
      exact ⟨hshift.lt_length, hshift.generated, hshift.seam⟩
  · rw [List.pairwise_append, List.pairwise_map]
    refine ⟨hordered, hordered'.imp fun hlt => Nat.add_lt_add_left hlt _, fun p hp q hq => ?_⟩
    obtain ⟨r, -, rfl⟩ := List.mem_map.mp hq
    exact Nat.lt_of_lt_of_le (hstands p hp).lt_length (Nat.le_add_right ..)

theorem Settled.add (h : bundle.Settled) (push : Push) : (bundle.add push).Settled := by
  by_cases hwritten : push.isWritten
  · rw [add_of_isWritten hwritten]
    exact h.parted.write push
  · rwa [add_of_not_isWritten hwritten]

/-- The entries that a program leaves carry its segments, also when more is added. -/
theorem Settled.carries (h : bundle.Settled) (push : Push) {whole : Bundle} {back : List Char}
    (htext : whole.text.toList = bundle.text.toList ++ (push.printed.text.toList ++ back))
    (hsources : withSource bundle.sources push.source <+: whole.sources) :
    List.Forall₂ (push.Carries whole bundle.text.length) push.printed.segments
      (push.printed.segments.map (bundle.entry push)) := by
  obtain ⟨ts, htokens, htied⟩ := push.tied
  rw [List.forall₂_map_right_iff, List.forall₂_same]
  intro s hs
  obtain ⟨t, ht, i, hties, -, -⟩ := htied.ties s hs
  refine ⟨?_, rfl, rfl, ts, htokens, t, ht, i, hties, fun hcovers => ?_⟩
  · obtain ⟨more, hmore⟩ := hsources
    have hmem := mem_withSource bundle.sources push.source
    rw [← hmore]
    exact (List.getElem?_append_left (List.idxOf_lt_length_iff.mpr hmem)).trans
      (List.getElem?_idxOf hmem)
  · rw [htext] at hcovers ⊢
    rw [← String.length_toList]
    have hshift := hties.shift h.last hcovers
    rwa [← h.place] at hshift

/-! ### Any number of pushes -/

/-- Adds programs in their order. -/
def addAll (bundle : Bundle) (pushes : List Push) : Bundle :=
  pushes.foldl add bundle

variable {pushes : List Push}

theorem addAll_cons (h : push.isWritten) :
    bundle.addAll (push :: pushes) = (bundle.parted.write push).addAll pushes := by
  rw [← add_of_isWritten h]
  rfl

theorem addAll_filter (bundle : Bundle) (pushes : List Push) :
    bundle.addAll (pushes.filter Push.isWritten) = bundle.addAll pushes := by
  have hadd :
      (fun (b : Bundle) (push : Push) => if push.isWritten then b.add push else b) = add := by
    funext b push
    split
    · rfl
    · next hnot => exact (add_of_not_isWritten hnot).symm
  rw [addAll, addAll, List.foldl_filter, hadd]

theorem Numbered.addAll (h : bundle.Numbered) (pushes : List Push) :
    (bundle.addAll pushes).Numbered := by
  induction pushes generalizing bundle with
  | nil => exact h
  | cons push pushes ih => exact ih (numbered_push h push.source push.printed)

/-- The mappings of a bundle of programs that has at most 2 ^ 62 sources and names have an end, and are
those of its source map. -/
theorem sourceMap_addAll (pushes : List Push) (file : String) :
    let bundle := ({} : Bundle).addAll pushes
    let entries := Entry.merge bundle.entries.toList
    bundle.sources.length ≤ 2 ^ 62 → (Entry.names entries).length ≤ 2 ^ 62 →
    ∃ names mappings, Entry.encode? entries = some (names, mappings) ∧
      bundle.sourceMap file = ⟨file, bundle.sources, names, mappings⟩ :=
  fun hsources hnames => (numbered_empty.addAll pushes).sourceMap hsources hnames file

theorem Settled.addAll (h : bundle.Settled) (pushes : List Push) :
    (bundle.addAll pushes).Settled := by
  induction pushes generalizing bundle with
  | nil => exact h
  | cons push pushes ih => exact ih (h.add push)

theorem sources_addAll (hwritten : ∀ push ∈ pushes, push.isWritten) {names : List String}
    (h : bundle.sources = names.eraseDups) :
    (bundle.addAll pushes).sources = (names ++ pushes.map Push.source).eraseDups := by
  induction pushes generalizing bundle names with
  | nil => rw [List.map_nil, List.append_nil]; exact h
  | cons push pushes ih =>
    obtain ⟨hpush, hrest⟩ := List.forall_mem_cons.mp hwritten
    have hsources : (bundle.add push).sources = (names ++ [push.source]).eraseDups := by
      rw [add_of_isWritten hpush, sources_write, h, withSource_eraseDups]
    rw [List.map_cons, List.append_cons]
    exact ih hrest hsources

theorem prefix_addAll (bundle : Bundle) (pushes : List Push) :
    bundle.sources <+: (bundle.addAll pushes).sources := by
  induction pushes generalizing bundle with
  | nil => exact List.prefix_rfl
  | cons push pushes ih =>
    refine List.IsPrefix.trans ?_ (ih (bundle.add push))
    by_cases hwritten : push.isWritten
    · rw [add_of_isWritten hwritten, sources_write]
      exact prefix_withSource ..
    · exact add_of_not_isWritten hwritten ▸ List.prefix_rfl

theorem text_addAll (hwritten : ∀ push ∈ pushes, push.isWritten) :
    (bundle.addAll pushes).text.toList =
      bundle.text.toList ++ Push.texts bundle.openEnd pushes := by
  induction pushes generalizing bundle with
  | nil => exact (List.append_nil _).symm
  | cons push pushes ih =>
    obtain ⟨hpush, hrest⟩ := List.forall_mem_cons.mp hwritten
    rw [addAll_cons hpush, ih hrest, text_write, text_parted]
    simp only [List.append_assoc]
    rfl

/-- Programs leave their segments in a bundle, each one at the place where its token begins. -/
theorem Settled.enters (h : bundle.Settled) (hwritten : ∀ push ∈ pushes, push.isWritten) :
    ∃ es, (bundle.addAll pushes).entries.toList = bundle.entries.toList ++ es ∧
      Push.Enters (bundle.addAll pushes) bundle.text.length bundle.openEnd pushes es := by
  induction pushes generalizing bundle with
  | nil => exact ⟨[], (List.append_nil _).symm, .done⟩
  | cons push pushes ih =>
    obtain ⟨hpush, hrest⟩ := List.forall_mem_cons.mp hwritten
    rw [addAll_cons hpush]
    obtain ⟨es, hentries, henters⟩ := ih (h.parted.write push) hrest
    have hcarries := h.parted.carries push
      (by rw [text_addAll hrest, text_write, List.append_assoc])
      (prefix_addAll (bundle.parted.write push) pushes)
    have hlength : bundle.parted.text.length =
        bundle.text.length + (Push.lead bundle.openEnd).length := by
      rw [← String.length_toList, text_parted, List.length_append, String.length_toList]
    have hend : (bundle.parted.write push).text.length =
        bundle.parted.text.length + push.printed.text.length := by
      rw [← String.length_toList, text_write, List.length_append, String.length_toList,
        String.length_toList]
    rw [hlength] at hcarries hend
    rw [hend] at henters
    refine ⟨_ ++ es, ?_, .push hcarries henters⟩
    rw [hentries, entries_write, entries_parted, List.append_assoc]

/-- Entries of a bundle are in the order of their places, if these cover its text. -/
theorem Settled.ordered (h : bundle.Settled) (hcovers : Place.Covers bundle.text.toList) :
    bundle.entries.toList.Pairwise fun a b => a.segment.generated.Before b.segment.generated := by
  obtain ⟨stands, hentries, hstands, hordered⟩ := h.offsets hcovers
  rw [← hentries, List.pairwise_map]
  exact hordered.imp_of_mem fun hp hq hlt => (hstands _ hp).before (hstands _ hq) hlt hcovers

/-- A bundle of programs, of which the empty ones have no segments and leave nothing: its sources
are the names of the others, each one once, its text is theirs, and its segments carry theirs, in
their order and with ever later places, if these cover the whole text. -/
theorem addAll_carries (pushes : List Push) :
    let bundle := ({} : Bundle).addAll pushes
    let written := pushes.filter Push.isWritten
    bundle.sources = (written.map Push.source).eraseDups ∧
      bundle.text.toList = Push.texts false written ∧
      (∀ push ∈ pushes, push ∉ written → push.printed.segments = []) ∧
      Push.Enters bundle 0 false written bundle.entries.toList ∧
      (Place.Covers bundle.text.toList → bundle.entries.toList.Pairwise fun a b =>
        a.segment.generated.Before b.segment.generated) := by
  intro bundle written
  have hwritten : ∀ push ∈ written, push.isWritten := fun push hpush => (List.mem_filter.mp hpush).2
  have hbundle : ({} : Bundle).addAll written = bundle := addAll_filter _ _
  obtain ⟨es, hentries, henters⟩ := settled_empty.enters hwritten
  rw [← hbundle]
  have hnone : ({} : Bundle).sources = ([] : List String).eraseDups := rfl
  refine ⟨sources_addAll hwritten hnone, text_addAll hwritten, fun push hpush hnot => ?_, ?_,
    (settled_empty.addAll written).ordered⟩
  · exact Push.segments_eq_nil fun hpushed => hnot (List.mem_filter.mpr ⟨hpush, hpushed⟩)
  obtain rfl : (({} : Bundle).addAll written).entries.toList = es := hentries
  exact henters

/-- An empty program between two others, and a second one from the first source. -/
theorem addAll_carries_four : ∃ pushes : List Push, pushes.map Push.source = ["a", "c", "b", "a"] ∧
    let bundle := ({} : Bundle).addAll pushes
    bundle.text = "x=1;f();\ny" ∧ bundle.sources = ["a", "b"] ∧
      bundle.entries.toList.map (fun e => (e.source, e.segment.generated)) =
        [(0, ⟨0, 0⟩), (0, ⟨0, 1⟩), (0, ⟨0, 2⟩), (1, ⟨0, 4⟩), (0, ⟨1, 0⟩)] ∧
      Push.Enters bundle 0 false (pushes.filter Push.isWritten) bundle.entries.toList := by
  have hparse : ((parse "x = 1" none).toOption.any fun a =>
      (parse "// none" none).toOption.any fun c => (parse "f(\n)" none).toOption.any fun b =>
      (parse " y" none).toOption.any fun d =>
        let bundle := ((({} : Bundle).push "a" (a.print [.minify true])).push "c" (c.print []))
        let bundle := (bundle.push "b" (b.print [.indent " "])).push "a" (d.print [.minify true])
        bundle.text == "x=1;f();\ny" && bundle.sources == ["a", "b"] &&
          bundle.entries.toList.map (fun e => (e.source, e.segment.generated)) ==
            [(0, ⟨0, 0⟩), (0, ⟨0, 1⟩), (0, ⟨0, 2⟩), (1, ⟨0, 4⟩), (0, ⟨1, 0⟩)]) = true := by
    decide +kernel
  obtain ⟨a, ha, hparse⟩ := exists_ok_of_any hparse
  obtain ⟨c, hc, hparse⟩ := exists_ok_of_any hparse
  obtain ⟨b, hb, hparse⟩ := exists_ok_of_any hparse
  obtain ⟨d, hd, hbundle⟩ := exists_ok_of_any hparse
  simp only [Bool.and_eq_true, beq_iff_eq] at hbundle
  obtain ⟨⟨htext, hsources⟩, hplaces⟩ := hbundle
  let pushes : List Push := [⟨"a", _, a, [.minify true], ⟨_, ha⟩, by simp⟩,
    ⟨"c", _, c, [], ⟨_, hc⟩, by simp⟩, ⟨"b", _, b, [.indent " "], ⟨_, hb⟩, by simp⟩,
    ⟨"a", _, d, [.minify true], ⟨_, hd⟩, by simp⟩]
  exact ⟨pushes, rfl, htext, hsources, hplaces, (addAll_carries pushes).2.2.2.1⟩

end Bundle
end EcmaPress
